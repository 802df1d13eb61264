import Mathlib.Logic.Relation
import ScopedGrammar.Proofs.Lists
import ScopedGrammar.Proofs.Tree.Structure

/-!
# Trees that differ by the names of their variables

Two trees are variants of each other if they differ at most by the names that their binders
introduce. Below the binders the names of the one tree match those of the other: the names of
corresponding binders match each other and nothing else. So the relation between trees is defined
over a matching of names; for whole trees it starts with equality.
-/
namespace ScopedGrammar

variable {K : Type}

/-- The rules differ at most by their names. -/
def Rule.SameUpToName (r r' : Rule K) : Prop := { r with name := r'.name } = r'

namespace Rule.SameUpToName

variable {u v w : Rule K}

theorem refl (v : Rule K) : v.SameUpToName v := rfl

theorem symm (h : v.SameUpToName w) : w.SameUpToName v := by
  cases v
  cases w
  simp_all [SameUpToName]

theorem trans (h : u.SameUpToName v) (h' : v.SameUpToName w) : u.SameUpToName w := by
  cases u
  cases v
  cases w
  simp_all [SameUpToName]

end Rule.SameUpToName

/-- Which names of one tree correspond to which names of another. -/
abbrev Matching := String → String → Prop

namespace Matching

/-- The matching below two binders: the names just introduced hide what they matched before. -/
def bind (v w : String) (M : Matching) : Matching := fun x y =>
  (x = v ∧ y = w) ∨ (x ≠ v ∧ y ≠ w ∧ M x y)

/-- The matching below two nodes. -/
def below (M : Matching) (kind kind' : NodeKind K) : Matching :=
  match kind.introduced?, kind'.introduced? with
  | some v, some w => M.bind v.name w.name
  | _, _ => M

/-- The matching the other way round. -/
def flip (M : Matching) : Matching := fun x y => M y x

theorem bind_flip (v w : String) (M : Matching) : (M.bind v w).flip = M.flip.bind w v := by
  funext x y
  simp only [bind, flip, eq_iff_iff]
  constructor
  · rintro (⟨rfl, rfl⟩ | ⟨hv, hw, h⟩)
    · exact .inl ⟨rfl, rfl⟩
    · exact .inr ⟨hw, hv, h⟩
  · rintro (⟨rfl, rfl⟩ | ⟨hv, hw, h⟩)
    · exact .inl ⟨rfl, rfl⟩
    · exact .inr ⟨hw, hv, h⟩

theorem bind_eq (v : String) : Matching.bind v v Eq = Eq := by
  funext x y
  simp only [bind, eq_iff_iff]
  constructor
  · rintro (⟨rfl, rfl⟩ | ⟨-, -, h⟩)
    · rfl
    · exact h
  · rintro rfl
    by_cases h : x = v
    · exact .inl ⟨h, h⟩
    · exact .inr ⟨h, h, rfl⟩

/-- What matches below two nodes was introduced by them, or matched above. -/
theorem below_imp {M N : Matching} {R : Rule K → Rule K → Prop} {kind kind' : NodeKind K}
    {x y : String} (hrel : Option.Rel R kind.introduced? kind'.introduced?)
    (himp : (∀ v, kind.introduced? = some v → x ≠ v.name) →
      (∀ w, kind'.introduced? = some w → y ≠ w.name) → M x y → N x y) :
    M.below kind kind' x y → N.below kind kind' x y := by
  unfold below
  revert hrel himp
  generalize kind.introduced? = v?
  generalize kind'.introduced? = w?
  rintro (hvw | _) himp
  · rintro (h | ⟨hv, hw, h⟩)
    · exact .inl h
    · exact .inr ⟨hv, hw, himp (by simpa using hv) (by simpa using hw) h⟩
  · exact himp (by simp) (by simp)

theorem below_self (kind : NodeKind K) : Matching.below Eq kind kind = Eq := by
  unfold below
  cases kind.introduced? with
  | none => rfl
  | some v => exact bind_eq v.name

theorem below_flip (M : Matching) (kind kind' : NodeKind K) :
    (M.below kind kind').flip = M.flip.below kind' kind := by
  unfold below
  cases kind.introduced? <;> cases kind'.introduced? <;> try rfl
  exact bind_flip _ _ M

theorem comp_bind {u v w x z : String} {M N : Matching} :
    Relation.Comp (M.bind u v) (N.bind v w) x z → (Matching.bind u w (Relation.Comp M N)) x z := by
  rintro ⟨y, ⟨rfl, rfl⟩ | ⟨hu, hv, hM⟩, ⟨hv', hw⟩ | ⟨hv', hw, hN⟩⟩
  · exact .inl ⟨rfl, hw⟩
  · exact absurd rfl hv'
  · exact absurd hv' hv
  · exact .inr ⟨hu, hw, y, hM, hN⟩

theorem comp_below {M N : Matching} {R S : Rule K → Rule K → Prop} {k k' k'' : NodeKind K}
    {x z : String} (h : Option.Rel R k.introduced? k'.introduced?)
    (h' : Option.Rel S k'.introduced? k''.introduced?) :
    Relation.Comp (M.below k k') (N.below k' k'') x z →
      (Matching.below (Relation.Comp M N) k k'') x z := by
  unfold below
  revert h h'
  generalize k.introduced? = u?
  generalize k'.introduced? = v?
  generalize k''.introduced? = w?
  rintro (_ | _) (_ | _)
  · exact comp_bind
  · exact id

end Matching

namespace NodeKind

/-- Nodes of some names and kinds correspond: a use of a variable to that of a matching one, and
any other node to one of the same name and kind. -/
def VariantOver (M : Matching) (name name' : String) : NodeKind K → NodeKind K → Prop
  | .plain, .plain => name = name'
  | .binder v, .binder w => name = name' ∧ v.SameUpToName w
  | .variableUse, .variableUse => M name name'
  | _, _ => False

theorem VariantOver.symm {M : Matching} {name name' : String} {kind kind' : NodeKind K}
    (h : kind.VariantOver M name name' kind') : kind'.VariantOver M.flip name' name kind := by
  cases kind <;> cases kind' <;> simp_all [VariantOver, Matching.flip]
  exact h.2.symm

theorem VariantOver.trans {M N : Matching} {x y z : String} {k k' k'' : NodeKind K}
    (h : k.VariantOver M x y k') (h' : k'.VariantOver N y z k'') :
    k.VariantOver (Relation.Comp M N) x z k'' := by
  cases k <;> cases k' <;> try exact h.elim
  · cases k'' <;> try exact h'.elim
    exact Eq.trans h h'
  · cases k'' <;> try exact h'.elim
    exact ⟨h.1.trans h'.1, h.2.trans h'.2⟩
  · cases k'' <;> try exact h'.elim
    exact ⟨y, h, h'⟩

theorem VariantOver.introduced? {M : Matching} {name name' : String} {kind kind' : NodeKind K}
    (h : kind.VariantOver M name name' kind') :
    Option.Rel Rule.SameUpToName kind.introduced? kind'.introduced? := by
  cases kind <;> cases kind' <;> try exact h.elim
  · exact .none
  · exact .some h.2
  · exact .none

end NodeKind

namespace Tree

/-- The roots of two trees correspond, whatever their arguments are. -/
structure HeadOver (M : Matching) (s t : Tree K) : Prop where
  nonterminal_eq : s.nonterminal = t.nonterminal
  kind : s.kind.VariantOver M s.name t.name t.kind
  isSome_eq : s.args?.isSome = t.args?.isSome

mutual

/-- The trees differ at most by the names of their binders, where the names in force match. -/
def VariantOver (M : Matching) : Tree K → Tree K → Prop
  | .node nt name kind none, t => HeadOver M (.node nt name kind none) t ∧ t.args = []
  | .node nt name kind (some as), t =>
      HeadOver M (.node nt name kind (some as)) t ∧ VariantArgs (M.below kind t.kind) as t.args

def VariantArgs (M : Matching) : List (Arg K) → List (Arg K) → Prop
  | [], bs => bs = []
  | .subtree s :: as, bs => ∃ t bs', bs = .subtree t :: bs' ∧ VariantOver M s t ∧ VariantArgs M as bs'
  | .terminal a :: as, bs => ∃ bs', bs = .terminal a :: bs' ∧ VariantArgs M as bs'

end

/-- The trees differ at most by the names of their bound variables. -/
def Variant (s t : Tree K) : Prop := s.VariantOver Eq t

end Tree

/-- Arguments correspond if they are corresponding trees, or the same terminal. -/
inductive Arg.VariantOver (M : Matching) : Arg K → Arg K → Prop
  | subtree {s t : Tree K} (h : s.VariantOver M t) : Arg.VariantOver M (.subtree s) (.subtree t)
  | terminal (s : String) : Arg.VariantOver M (.terminal s) (.terminal s)

theorem Arg.VariantOver.symbol_eq {M : Matching} {a b : Arg K}
    (h : a.VariantOver M b) (hsub : ∀ s t : Tree K, s.VariantOver M t → s.nonterminal = t.nonterminal) :
    a.symbol = b.symbol := by
  cases h with
  | subtree h => exact hsub _ _ h
  | terminal s => rfl

namespace Tree

variable {M N : Matching} {s t u : Tree K}

theorem variantArgs_iff {as bs : List (Arg K)} :
    VariantArgs M as bs ↔ List.Forall₂ (Arg.VariantOver M) as bs := by
  induction as generalizing bs with
  | nil => rw [VariantArgs, List.forall₂_nil_left_iff]
  | cons a as ih =>
    rw [List.forall₂_cons_left_iff]
    cases a with
    | subtree s =>
      rw [VariantArgs]
      constructor
      · rintro ⟨t, bs', rfl, h, hs⟩
        exact ⟨_, bs', .subtree h, ih.mp hs, rfl⟩
      · rintro ⟨_, bs', ⟨h⟩, hs, rfl⟩
        exact ⟨_, bs', rfl, h, ih.mpr hs⟩
    | terminal s =>
      rw [VariantArgs]
      constructor
      · rintro ⟨bs', rfl, hs⟩
        exact ⟨_, bs', .terminal s, ih.mp hs, rfl⟩
      · rintro ⟨_, bs', ⟨⟩, hs, rfl⟩
        exact ⟨bs', rfl, ih.mpr hs⟩

theorem variantOver_iff : s.VariantOver M t ↔ HeadOver M s t ∧
    List.Forall₂ (Arg.VariantOver (M.below s.kind t.kind)) s.args t.args := by
  obtain ⟨nt, name, kind, args?⟩ := s
  cases args? with
  | none =>
    rw [VariantOver]
    exact and_congr_right fun _ => List.forall₂_nil_left_iff.symm
  | some as =>
    rw [VariantOver, variantArgs_iff]
    rfl

namespace VariantOver

theorem head (h : s.VariantOver M t) : HeadOver M s t := (variantOver_iff.mp h).1

theorem args (h : s.VariantOver M t) :
    List.Forall₂ (Arg.VariantOver (M.below s.kind t.kind)) s.args t.args :=
  (variantOver_iff.mp h).2

theorem nonterminal_eq (h : s.VariantOver M t) : s.nonterminal = t.nonterminal :=
  h.head.nonterminal_eq

end VariantOver

theorem symbol_eq_of_variantOver {a b : Arg K} (h : a.VariantOver M b) : a.symbol = b.symbol :=
  h.symbol_eq fun _ _ h => h.nonterminal_eq

theorem symbols_eq_of_forall₂ {as bs : List (Arg K)} (h : List.Forall₂ (Arg.VariantOver M) as bs) :
    as.map Arg.symbol = bs.map Arg.symbol :=
  map_eq_of_forall₂ h fun _ _ => symbol_eq_of_variantOver

theorem map_args_eq {β : Type} {f : Arg K → β} {args? args?' : Option (List (Arg K))}
    (hsome : args?.isSome = args?'.isSome) (h : (args?.getD []).map f = (args?'.getD []).map f) :
    args?.map (·.map f) = args?'.map (·.map f) := by
  cases args? <;> cases args?' <;> simp_all

theorem VariantOver.expansion_eq (h : s.VariantOver M t) :
    s.args?.map (·.map Arg.symbol) = t.args?.map (·.map Arg.symbol) :=
  map_args_eq h.head.isSome_eq (symbols_eq_of_forall₂ h.args)

theorem VariantOver.signature_eq (h : s.VariantOver M t) (hname : s.name = t.name) :
    s.signature = t.signature := by
  unfold signature
  rw [h.nonterminal_eq, hname, h.expansion_eq]

section Equivalence

theorem HeadOver.introduced? (h : HeadOver M s t) :
    Option.Rel Rule.SameUpToName s.kind.introduced? t.kind.introduced? :=
  h.kind.introduced?

theorem HeadOver.symm (h : HeadOver M s t) : HeadOver M.flip t s :=
  ⟨h.nonterminal_eq.symm, h.kind.symm, h.isSome_eq.symm⟩

namespace VariantOver

/-- A matching may be changed where the trees have no free variables. -/
theorem imp (h : s.VariantOver M t)
    (himp : ∀ x ∈ s.freeUses [], ∀ y ∈ t.freeUses [], M x y → N x y) : s.VariantOver N t := by
  induction s using induction generalizing M N t with
  | node nt name kind args? ih =>
    refine variantOver_iff.mpr ⟨⟨h.nonterminal_eq, ?_, h.head.isSome_eq⟩, ?_⟩
    · have hkind := h.head.kind
      obtain ⟨nt', name', kind', args?'⟩ := t
      cases kind <;> cases kind' <;> try exact hkind
      exact himp name (mem_freeUses_iff.mpr (.inl ⟨rfl, rfl⟩)) name'
        (mem_freeUses_iff.mpr (.inl ⟨rfl, rfl⟩)) hkind
    · refine forall₂_imp_of_mem h.args fun a ha b hb hab => ?_
      cases hab with
      | terminal s => exact .terminal s
      | @subtree c d hcd =>
        refine .subtree (ih c ha hcd fun x hx y hy => ?_)
        refine Matching.below_imp h.head.introduced? fun hv hw => himp x ?_ y ?_
        · exact mem_freeUses_iff.mpr (.inr ⟨by simpa using hv, c, ha, hx⟩)
        · refine mem_freeUses_iff.mpr (.inr ⟨?_, d, hb, hy⟩)
          cases t
          simpa using hw

theorem refl (t : Tree K) : t.VariantOver Eq t := by
  induction t using induction with
  | node nt name kind args? ih =>
    refine variantOver_iff.mpr ⟨⟨rfl, ?_, rfl⟩, ?_⟩
    · cases kind with
      | plain => exact rfl
      | binder v => exact ⟨rfl, .refl v⟩
      | variableUse => exact rfl
    · rw [Matching.below_self, List.forall₂_same]
      intro a ha
      cases a with
      | subtree c => exact .subtree (ih c ha)
      | terminal s => exact .terminal s

theorem symm (h : s.VariantOver M t) : t.VariantOver M.flip s := by
  induction s using induction generalizing M t with
  | node nt name kind args? ih =>
    refine variantOver_iff.mpr ⟨h.head.symm, ?_⟩
    rw [← Matching.below_flip]
    refine List.Forall₂.flip (forall₂_imp_of_mem h.args fun a ha b _ hab => ?_)
    cases hab with
    | subtree hcd => exact .subtree (ih _ ha hcd)
    | terminal s => exact .terminal s

theorem trans (h : s.VariantOver M t) (h' : t.VariantOver N u) :
    s.VariantOver (Relation.Comp M N) u := by
  induction s using induction generalizing M N t u with
  | node nt name kind args? ih =>
    have hhead : HeadOver (Relation.Comp M N) (node nt name kind args?) u := by
      refine ⟨h.nonterminal_eq.trans h'.nonterminal_eq, ?_,
        h.head.isSome_eq.trans h'.head.isSome_eq⟩
      exact h.head.kind.trans h'.head.kind
    refine variantOver_iff.mpr ⟨hhead, forall₂_trans h.args h'.args fun a ha b c hab hbc => ?_⟩
    cases hab with
    | terminal s =>
      cases hbc
      exact .terminal s
    | subtree hcd =>
      cases hbc with
      | subtree hde =>
        refine .subtree ((ih _ ha hcd hde).imp fun x _ z _ hxz => ?_)
        exact Matching.comp_below h.head.introduced? h'.head.introduced? hxz

end VariantOver

namespace Variant

@[refl] theorem refl (t : Tree K) : t.Variant t := VariantOver.refl t

theorem symm (h : s.Variant t) : t.Variant s :=
  (VariantOver.symm h).imp fun _ _ _ _ h => Eq.symm h

theorem trans (h : s.Variant t) (h' : t.Variant u) : s.Variant u :=
  (VariantOver.trans h h').imp fun _ _ _ _ ⟨_, hxy, hyz⟩ => hxy.trans hyz

theorem congr_over (h : s.Variant t) : s.VariantOver M u ↔ t.VariantOver M u := by
  constructor
  · intro hs
    exact (VariantOver.trans h.symm hs).imp fun _ _ _ _ ⟨_, hxy, hyz⟩ => hxy ▸ hyz
  · intro ht
    exact (VariantOver.trans h ht).imp fun _ _ _ _ ⟨_, hxy, hyz⟩ => hxy ▸ hyz

end Variant

section Measures

theorem depth_eq (t : Tree K) : t.depth = heightArgs t.args := by
  cases t
  exact depth_node ..

theorem countNodes_eq (t : Tree K) : t.countNodes = 1 + countNodesArgs t.args := by
  cases t
  exact countNodes_node ..

theorem heightArgs_congr {as bs : List (Arg K)}
    (h : List.Forall₂ (fun a b => a.asTree?.map depth = b.asTree?.map depth) as bs) :
    heightArgs as = heightArgs bs := by
  induction h with
  | nil => rfl
  | @cons a b as bs hab _ ih => cases a <;> cases b <;> simp_all [heightArgs, Arg.asTree?]

theorem countNodesArgs_congr {as bs : List (Arg K)}
    (h : List.Forall₂ (fun a b => a.asTree?.map countNodes = b.asTree?.map countNodes) as bs) :
    countNodesArgs as = countNodesArgs bs := by
  induction h with
  | nil => rfl
  | @cons a b as bs hab _ ih => cases a <;> cases b <;> simp_all [countNodesArgs, Arg.asTree?]

theorem VariantOver.depth_eq (h : s.VariantOver M t) : s.depth = t.depth := by
  induction s using induction generalizing M t with
  | node nt name kind args? ih =>
    rw [Tree.depth_eq, Tree.depth_eq t]
    refine heightArgs_congr (forall₂_imp_of_mem h.args fun a ha b _ hab => ?_)
    cases hab with
    | subtree hcd => exact congrArg some (ih _ ha hcd)
    | terminal s => rfl

theorem VariantOver.countNodes_eq (h : s.VariantOver M t) : s.countNodes = t.countNodes := by
  induction s using induction generalizing M t with
  | node nt name kind args? ih =>
    rw [Tree.countNodes_eq, Tree.countNodes_eq t]
    refine congrArg (1 + ·) (countNodesArgs_congr (forall₂_imp_of_mem h.args fun a ha b _ hab => ?_))
    cases hab with
    | subtree hcd => exact congrArg some (ih _ ha hcd)
    | terminal s => rfl

end Measures

end Equivalence

end Tree

end ScopedGrammar
