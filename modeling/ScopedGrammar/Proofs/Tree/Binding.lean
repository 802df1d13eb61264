import ScopedGrammar.Proofs.Tree.Renamed

/-!
# Which binder a variable denotes

The use of a variable denotes the innermost binder above it that introduces its name, and it is free
if there is none. Binders are told apart by their places, so it can be said of two trees that their
variables denote the same binders, whatever the names are: this is so for variants, and for what an
exchange of a subtree leaves as it was.
-/
namespace ScopedGrammar

variable {K : Type}

/-- The terminal that an argument is, if it is one. -/
def Arg.terminal? : Arg K → Option String
  | .subtree _ => none
  | .terminal s => some s

namespace Tree

/-- The root introduces the name. -/
def introduces (t : Tree K) (x : String) : Bool :=
  match t.introduced? with
  | some v => v.name == x
  | none => false

/-- The place of the innermost binder strictly above a place that introduces a name. -/
def binderFor (x : String) : Tree K → Place → Option Place
  | _, [] => none
  | t, i :: p =>
      (((t.child? i).bind fun c => c.binderFor x p).map (i :: ·)).or
        (if t.introduces x then some [] else none)

/-- The place of the binder that the variable used at a place denotes; absent for a free variable
and for a node that is no use of a variable. -/
def binderOf? (t : Tree K) (p : Place) : Option Place :=
  (t.get? p).bind fun n => if n.isVariableUse then t.binderFor n.name p else none

/-- A node without the subtrees among its arguments. -/
def root (t : Tree K) : String × String × NodeKind K × Option (List (Option String)) :=
  (t.nonterminal, t.name, t.kind, t.args?.map (·.map Arg.terminal?))

variable {M : Matching} {s t t' c m n r : Tree K} {p q b b' : Place} {i : ℕ} {x y : String}

section Binders

theorem introduces_iff : t.introduces x = true ↔ ∃ v, t.introduced? = some v ∧ v.name = x := by
  unfold introduces
  cases t.introduced? <;> simp

@[simp] theorem binderFor_nil (t : Tree K) (x : String) : t.binderFor x [] = none := by
  cases t; rfl

theorem binderFor_cons (hc : t.child? i = some c) (x : String) (p : Place) :
    t.binderFor x (i :: p) =
      ((c.binderFor x p).map (i :: ·)).or (if t.introduces x then some [] else none) := by
  cases t
  simp [binderFor, hc]

/-- No binder is found for a name that is not introduced above. -/
theorem binderFor_eq_none_iff (hn : t.get? p = some n) :
    t.binderFor x p = none ↔ x ∉ (t.variablesAbove p).map (·.name) := by
  induction p generalizing t with
  | nil => simp
  | cons i p ih =>
    obtain ⟨c, hc, hcn⟩ := get?_cons_eq_some.mp hn
    have hroot : x ∈ t.introduced?.toList.map (·.name) ↔ t.introduces x = true := by
      simp [introduces_iff]
    rw [binderFor_cons hc, variablesAbove_cons hc, List.map_append, List.mem_append, not_or,
      Option.or_eq_none_iff, Option.map_eq_none_iff, ih hcn, hroot, and_comm]
    simp

/-- The binder found for a name introduces it, and lies above the place. -/
theorem of_binderFor_eq_some (hn : t.get? p = some n) (h : t.binderFor x p = some b) :
    t.BindsAt b x ∧ ∃ i q, p = b ++ i :: q := by
  induction p generalizing t b with
  | nil => simp at h
  | cons i p ih =>
    obtain ⟨c, hc, hcn⟩ := get?_cons_eq_some.mp hn
    rw [binderFor_cons hc, Option.or_eq_some_iff] at h
    rcases h with h | ⟨-, h⟩
    · obtain ⟨b, hb, rfl⟩ := Option.map_eq_some_iff.mp h
      obtain ⟨hbinds, j, q, rfl⟩ := ih hcn hb
      exact ⟨(bindsAt_cons hc b).mpr hbinds, j, q, rfl⟩
    · obtain ⟨hroot, hb⟩ := Option.ite_none_right_eq_some.mp h
      obtain rfl := Option.some.inj hb
      exact ⟨bindsAt_nil.mpr (introduces_iff.mp hroot), i, p, rfl⟩

/-- A binder below a place hides those above it. -/
theorem binderFor_append (hn : t.get? p = some n) (hq : (n.get? q).isSome) :
    t.binderFor x (p ++ q) = ((n.binderFor x q).map (p ++ ·)).or (t.binderFor x p) := by
  induction p generalizing t with
  | nil =>
    obtain rfl : t = n := by simpa using hn
    simp
  | cons i p ih =>
    obtain ⟨c, hc, hcn⟩ := get?_cons_eq_some.mp hn
    rw [List.cons_append, binderFor_cons hc, binderFor_cons hc, ih hcn, Option.map_or,
      Option.or_assoc, Option.map_map]
    rfl

/-- Where all names are distinct, the same binder is found for a name from everywhere. -/
theorem binderFor_unique (ht : t.introducedNames.Nodup) (hm : t.get? p = some m)
    (hn : t.get? q = some n) (h : t.binderFor x p = some b) (h' : t.binderFor x q = some b') :
    b = b' :=
  (of_binderFor_eq_some hm h).1.unique ht (of_binderFor_eq_some hn h').1

/-- The free variables are those used where no binder is found for them. -/
theorem mem_freeUses_iff_binderFor : x ∈ t.freeUses [] ↔
    ∃ p n, t.get? p = some n ∧ n.kind = .variableUse ∧ n.name = x ∧ t.binderFor x p = none := by
  rw [mem_freeUses_iff_exists_place]
  exact exists₂_congr fun p n => and_congr_right fun hn => by rw [binderFor_eq_none_iff hn]

/-- In a closed tree a binder is found for what is free in a subtree. -/
theorem exists_binderFor_of_free (hclosed : ∀ x, x ∉ t.freeUses []) (hn : t.get? p = some n)
    (hx : x ∈ n.freeUses []) : ∃ b, t.binderFor x p = some b := by
  rw [← Option.ne_none_iff_exists']
  intro hnone
  obtain ⟨q, m, hm, huse, hname, hq⟩ := mem_freeUses_iff_binderFor.mp hx
  refine hclosed x (mem_freeUses_iff_binderFor.mpr ⟨p ++ q, m, get?_trans hn hm, huse, hname, ?_⟩)
  rw [binderFor_append hn (by simp [hm]), hq, hnone]
  rfl

theorem mem_introducedNames_of_free (hclosed : ∀ x, x ∉ t.freeUses []) (hn : t.get? p = some n)
    (hx : x ∈ n.freeUses []) : x ∈ t.introducedNames := by
  obtain ⟨b, hb⟩ := exists_binderFor_of_free hclosed hn hx
  exact (of_binderFor_eq_some hn hb).1.mem_introducedNames

end Binders

section Variants

theorem VariantOver.child (h : s.VariantOver M t) (hc : s.child? i = some c) :
    ∃ d, t.child? i = some d ∧ c.VariantOver (M.below s.kind t.kind) d := by
  obtain ⟨hoff, n, hn, hcn⟩ := h.at_place (p := [i]) (m := c) (by simp [hc])
  cases hoff with
  | @child _ _ _ _ d _ _ _ _ hc' hd _ _ =>
    obtain rfl : d = n := by simpa [hd] using hn
    rw [along_cons hc hd] at hcn
    exact ⟨d, hd, hcn⟩

/-- Names that match below two nodes are those that the nodes introduce, or match above. -/
theorem introduces_eq_of_below (h : HeadOver M s t) (hxy : M.below s.kind t.kind x y) :
    s.introduces x = t.introduces y ∧ (s.introduces x = false → M x y) := by
  have hrel := h.introduced?
  unfold introduces
  rw [introduced?_eq, introduced?_eq]
  unfold Matching.below at hxy
  revert hrel hxy
  generalize s.kind.introduced? = v?
  generalize t.kind.introduced? = w?
  rintro hxy (_ | _)
  · rcases hxy with ⟨rfl, rfl⟩ | ⟨hx, hy, hxy⟩
    · simp
    · simp [hx.symm, hy.symm, hxy]
  · simpa using hxy

/-- Names that match at a place have their binders at one place, or match from the start. -/
theorem VariantOver.binderFor_eq (h : s.VariantOver M t) (hm : s.get? p = some m)
    (hxy : M.along s t p x y) :
    s.binderFor x p = t.binderFor y p ∧ (s.binderFor x p = none → M x y) := by
  induction p generalizing M s t with
  | nil => exact ⟨by simp, fun _ => hxy⟩
  | cons i p ih =>
    obtain ⟨c, hc, hcm⟩ := get?_cons_eq_some.mp hm
    obtain ⟨d, hd, hcd⟩ := h.child hc
    rw [along_cons hc hd] at hxy
    obtain ⟨hbelow, hmatch⟩ := ih hcd hcm hxy
    rw [binderFor_cons hc, binderFor_cons hd, ← hbelow]
    cases hb : c.binderFor x p with
    | some b => simp
    | none =>
      obtain ⟨hroot, hM⟩ := introduces_eq_of_below h.head (hmatch hb)
      simpa [← hroot] using hM

theorem VariantOver.isVariableUse_eq (h : s.VariantOver M t) :
    s.isVariableUse = t.isVariableUse := by
  have hkind := h.head.kind
  unfold isVariableUse
  revert hkind
  cases s.kind <;> cases t.kind <;> simp [NodeKind.VariantOver]

theorem VariantOver.name_eq (h : s.VariantOver M t) (huse : s.isVariableUse = false) :
    s.name = t.name := by
  have hkind := h.head.kind
  unfold isVariableUse at huse
  cases hs : s.kind <;> cases ht : t.kind <;> simp_all [NodeKind.VariantOver]

theorem VariantOver.names_match (h : s.VariantOver M t) (huse : s.isVariableUse = true) :
    M s.name t.name := by
  have hkind := h.head.kind
  rw [Grammar.isVariableUse_iff_kind.mp huse,
    Grammar.isVariableUse_iff_kind.mp (h.isVariableUse_eq ▸ huse)] at hkind
  exact hkind

/-- Uses of variables correspond to each other, and they have their binders at one place or are free
under matching names. -/
theorem VariantOver.uses_match (h : s.VariantOver M t) (hm : s.get? p = some m)
    (hn : t.get? p = some n) : m.isVariableUse = n.isVariableUse ∧ (m.isVariableUse = true →
      s.binderFor m.name p = t.binderFor n.name p ∧
        (s.binderFor m.name p = none → M m.name n.name)) := by
  have hrel := h.rel_get? p
  rw [hm, hn] at hrel
  obtain ⟨hmn⟩ := hrel
  exact ⟨hmn.isVariableUse_eq, fun huse => h.binderFor_eq hm (hmn.names_match huse)⟩

/-- The variables of variants denote the same binders. -/
theorem Variant.binderOf?_eq (h : s.Variant t) (p : Place) : s.binderOf? p = t.binderOf? p := by
  have hrel := VariantOver.rel_get? h p
  unfold binderOf?
  cases hm : s.get? p <;> cases hn : t.get? p <;> rw [hm, hn] at hrel
  · rfl
  · cases hrel
  · cases hrel
  · obtain ⟨huse, hbinder⟩ := VariantOver.uses_match h hm hn
    rw [Option.bind_some, Option.bind_some, ← huse]
    split
    · next hm => exact (hbinder hm).1
    · rfl

theorem Variant.mem_freeUses_iff (h : n.Variant c) : x ∈ n.freeUses [] ↔ x ∈ c.freeUses [] := by
  constructor
  · intro hx
    obtain ⟨y, hy, rfl⟩ := VariantOver.exists_freeUse h hx
    exact hy
  · intro hx
    obtain ⟨y, hy, rfl⟩ := VariantOver.exists_freeUse h.symm hx
    exact hy

end Variants

section Replacement

/-- An exchange below an argument leaves the root and all other arguments as they were. -/
theorem of_replace?_cons (h : t.replace? (i :: p) r = some t') :
    ∃ c c', t.child? i = some c ∧ c.replace? p r = some c' ∧ t'.child? i = some c' ∧
      (∀ j, j ≠ i → t'.child? j = t.child? j) ∧ t'.introduced? = t.introduced? ∧
        t'.root = t.root := by
  obtain ⟨c, hc, hrep⟩ := Option.bind_eq_some_iff.mp (replace?_cons t r i p ▸ h)
  obtain ⟨c', hc', rfl⟩ := Option.map_eq_some_iff.mp hrep
  obtain ⟨hargs, hkind, -⟩ := withArgs_of_child? hc (t.args.set i (.subtree c'))
  have hi := child?_eq_some.mp hc
  refine ⟨c, c', hc, hc', ?_, fun j hj => ?_, ?_, ?_⟩
  · rw [child?_eq_some, hargs]
    exact List.getElem?_set_self (List.getElem?_eq_some_iff.mp hi).1
  · rw [child?, child?, hargs, List.getElem?_set_ne hj.symm]
  · rw [introduced?_eq, introduced?_eq, hkind]
  · have hterminals : (t.args.set i (.subtree c')).map Arg.terminal? = t.args.map Arg.terminal? :=
      map_set_args hc rfl
    obtain ⟨nt, name, kind, args?⟩ := t
    cases args? with
    | none => simp at hi
    | some as => exact congrArg (fun terminals => (nt, name, kind, some terminals)) hterminals

/-- An exchange at a place leaves all nodes as they were but those at the place and below. -/
theorem root_replace? (h : t.replace? p r = some t') (hq : ¬ p <+: q) :
    (t'.get? q).map root = (t.get? q).map root := by
  induction p generalizing t t' q with
  | nil => exact absurd List.nil_prefix hq
  | cons i p ih =>
    obtain ⟨c, c', hc, hrep, hc', hothers, -, hroot⟩ := of_replace?_cons h
    cases q with
    | nil => simp [hroot]
    | cons j q =>
      by_cases hj : j = i
      · subst hj
        rw [get?_cons, get?_cons, hc, hc']
        exact ih hrep fun hpq => hq (List.cons_prefix_cons.mpr ⟨rfl, hpq⟩)
      · rw [get?_cons, get?_cons, hothers j hj]

/-- What is read off the way to a place, step by step and by what the nodes on it introduce, is read
as before an exchange, unless the place is below that of the exchange. -/
theorem read_replace? {β : Type} (read : Tree K → Place → β)
    (hnil : ∀ s s' : Tree K, read s' [] = read s [])
    (hcons : ∀ (s s' : Tree K) j q, s'.introduced? = s.introduced? →
      Option.Rel (fun c c' => read c' q = read c q) (s.child? j) (s'.child? j) →
        read s' (j :: q) = read s (j :: q))
    (h : t.replace? p r = some t') (hq : ∀ i q', q ≠ p ++ i :: q') : read t' q = read t q := by
  induction p generalizing t t' q with
  | nil =>
    cases q with
    | nil => exact hnil t t'
    | cons j q => exact absurd rfl (hq j q)
  | cons i p ih =>
    obtain ⟨c, c', hc, hrep, hc', hothers, hown, -⟩ := of_replace?_cons h
    cases q with
    | nil => exact hnil t t'
    | cons j q =>
      refine hcons t t' j q hown ?_
      by_cases hj : j = i
      · subst hj
        rw [hc, hc']
        exact .some (ih hrep fun k q' heq => hq k q' (congrArg (j :: ·) heq))
      · rw [hothers j hj]
        cases t.child? j with
        | none => exact .none
        | some d => exact .some rfl

/-- An exchange at a place leaves the binders as they were that are found from the place, and from
all places that are not below. -/
theorem binderFor_replace? (h : t.replace? p r = some t') (hq : ∀ i q', q ≠ p ++ i :: q') :
    t'.binderFor x q = t.binderFor x q := by
  refine read_replace? (binderFor x) (fun s s' => by simp) (fun s s' j q hown hrel => ?_) h hq
  obtain ⟨nt, name, kind, args?⟩ := s
  obtain ⟨nt', name', kind', args?'⟩ := s'
  rw [binderFor, binderFor, introduces, introduces, hown]
  generalize child? _ j = c? at hrel ⊢
  generalize child? _ j = c'? at hrel ⊢
  cases hrel with
  | none => rfl
  | some hread => simp [hread]

theorem exists_of_map_root_eq {m' : Tree K} (h : (t'.get? p).map root = (t.get? p).map root)
    (hm' : t'.get? p = some m') : ∃ m, t.get? p = some m ∧ m.name = m'.name ∧ m.kind = m'.kind := by
  rw [hm', eq_comm, Option.map_some, Option.map_eq_some_iff] at h
  obtain ⟨m, hm, heq⟩ := h
  simp only [root, Prod.mk.injEq] at heq
  exact ⟨m, hm, heq.2.1, heq.2.2.1⟩

theorem binderOf?_congr (hroot : (t'.get? p).map root = (t.get? p).map root)
    (hbinder : ∀ x, t'.binderFor x p = t.binderFor x p) : t'.binderOf? p = t.binderOf? p := by
  unfold binderOf?
  cases hm' : t'.get? p with
  | none =>
    rw [hm', eq_comm, Option.map_none, Option.map_eq_none_iff] at hroot
    rw [hroot]
    rfl
  | some m' =>
    obtain ⟨m, hm, hname, hkind⟩ := exists_of_map_root_eq hroot hm'
    rw [hm, Option.bind_some, Option.bind_some, hbinder, hname, isVariableUse, isVariableUse, hkind]

variable (ht' : t.replace? p r = some t')
include ht'

/-- An exchange leaves the binders as they were that are found from its place. -/
theorem binderFor_here (x : String) : t'.binderFor x p = t.binderFor x p :=
  binderFor_replace? ht' fun i q heq => by
    have := congrArg List.length heq
    simp at this

theorem binderFor_off (hq : ¬ p <+: q) (x : String) : t'.binderFor x q = t.binderFor x q :=
  binderFor_replace? ht' fun i q' heq => hq ⟨i :: q', heq.symm⟩

/-- A closed tree stays closed if what is put into it uses only what is bound there. -/
theorem not_mem_freeUses_replace? (hclosed : ∀ x, x ∉ t.freeUses [])
    (hfree : ∀ x ∈ r.freeUses [], t.binderFor x p ≠ none) (x : String) : x ∉ t'.freeUses [] := by
  intro hx
  obtain ⟨q, m, hm, huse, hname, hnone⟩ := mem_freeUses_iff_binderFor.mp hx
  by_cases hq : p <+: q
  · obtain ⟨q, rfl⟩ := hq
    rw [get?_append, get?_replace? ht', Option.bind_some] at hm
    rw [binderFor_append (get?_replace? ht') (by simp [hm]), Option.or_eq_none_iff,
      Option.map_eq_none_iff, binderFor_here ht'] at hnone
    exact hfree x (mem_freeUses_iff_binderFor.mpr ⟨q, m, hm, huse, hname, hnone.1⟩) hnone.2
  · obtain ⟨m', hm', hname', hkind'⟩ := exists_of_map_root_eq (root_replace? ht' hq) hm
    rw [binderFor_off ht' hq] at hnone
    exact hclosed x (mem_freeUses_iff_binderFor.mpr
      ⟨q, m', hm', hkind'.trans huse, hname'.trans hname, hnone⟩)

end Replacement

end Tree

end ScopedGrammar
