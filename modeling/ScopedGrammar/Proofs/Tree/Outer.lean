import ScopedGrammar.Proofs.Grammar.Plain
import ScopedGrammar.Proofs.Tree.Agreement

/-!
# Subtrees within trees

The text of a subtree names the variables bound above it by the depths of their binders. So two
subtrees are alike if they correspond to each other over the names that are printed alike. Where
the nodes on the way to both correspond, these are the names that the way matches.
-/
namespace ScopedGrammar.Tree

variable {K : Type}

section OuterNames

variable {t c : Tree K} {p : Place} {i : ℕ}

theorem outerNames_cons (depth : ℕ) (hc : t.child? i = some c) (p : Place) :
    outerNames depth t (i :: p) = outerNames (depth + 1) c p ++
      (t.introduced?.map fun v => (v.name, displayName v depth ++ "'")).toList := by
  rw [outerNames, hc]

/-- Each variable above a place has its printed name, the innermost one first. -/
theorem keys_outerNames (depth : ℕ) (t : Tree K) (p : Place) :
    (outerNames depth t p).map (·.1) = ((t.variablesAbove p).map (·.name)).reverse := by
  induction p generalizing depth t with
  | nil => rw [variablesAbove_nil, outerNames]; rfl
  | cons i p ih =>
    cases hc : t.child? i with
    | none =>
      rw [outerNames, variablesAbove, hc]
      cases t.introduced? <;> rfl
    | some c =>
      rw [outerNames_cons depth hc, variablesAbove_cons hc, List.map_append, ih]
      cases t.introduced? <;> simp

theorem mem_keys_outerNames {depth : ℕ} {x : String} :
    x ∈ (outerNames depth t p).map (·.1) ↔ x ∈ (t.variablesAbove p).map (·.name) := by
  rw [keys_outerNames, List.mem_reverse]

theorem Renaming.apply_append_left {r r' : Renaming} {x : String} (hx : x ∈ r.map (·.1)) :
    Renaming.apply (r ++ r') x = r.apply x := by
  obtain ⟨pair, hpair, rfl⟩ := List.mem_map.mp hx
  unfold Renaming.apply
  rw [List.lookup_append]
  cases h : r.lookup pair.1 with
  | none =>
    have hne := List.lookup_eq_none_iff.mp h pair hpair
    simp at hne
  | some y => rfl

theorem Renaming.apply_append_right {r r' : Renaming} {x : String} (hx : x ∉ r.map (·.1)) :
    Renaming.apply (r ++ r') x = r'.apply x := by
  unfold Renaming.apply
  rw [List.lookup_append, List.lookup_eq_none_iff.mpr, Option.none_or]
  intro pair hpair
  have hne : x ≠ pair.1 := fun heq => hx (heq ▸ List.mem_map_of_mem hpair)
  simpa using hne

/-- The variable of the root is printed with the depth of the root. -/
theorem apply_outerNames_root {g : Grammar K} {names : NameSupply} {S : Scope K} {v : Rule K}
    (ht : g.Derived names S t) (hc : t.child? i = some c) (hp : (c.get? p).isSome)
    (hv : t.introduced? = some v) (depth : ℕ) :
    (outerNames depth t (i :: p)).apply v.name = markText v.stem depth true := by
  have hmem := mem_args_of_child? hc
  have hkeys : v.name ∉ (outerNames (depth + 1) c p).map (·.1) := by
    rw [mem_keys_outerNames]
    intro habove
    obtain ⟨u, hu, heq⟩ := List.mem_map.mp habove
    have hbelow := (ht.child hmem).fresh.disjoint v.name
      (heq ▸ mem_introducedNames_of_variablesAbove hu hp)
    rw [Scope.below_kind, hv] at hbelow
    simp at hbelow
  rw [outerNames_cons depth hc, Renaming.apply_append_right hkeys, hv]
  simp [Renaming.apply, displayName, markText]

theorem apply_outerNames_child {v : Rule K} (hc : t.child? i = some c)
    (hv : v ∈ c.variablesAbove p) (depth : ℕ) :
    (outerNames depth t (i :: p)).apply v.name = (outerNames (depth + 1) c p).apply v.name := by
  rw [outerNames_cons depth hc, Renaming.apply_append_left]
  exact mem_keys_outerNames.mpr (List.mem_map_of_mem hv)

/-- A variable above a place is printed by its stem and the depth of its binder. -/
theorem exists_apply_outerNames {g : Grammar K} {names : NameSupply} {S : Scope K} {n : Tree K}
    (ht : g.Derived names S t) (hn : t.get? p = some n) (depth : ℕ) {v : Rule K}
    (hv : v ∈ t.variablesAbove p) : ∃ level, depth ≤ level ∧ level < depth + p.length ∧
      (outerNames depth t p).apply v.name = markText v.stem level true := by
  induction p generalizing depth S t with
  | nil => simp at hv
  | cons i p ih =>
    obtain ⟨c, hc, hcn⟩ := get?_cons_eq_some.mp hn
    rw [variablesAbove_cons hc, List.mem_append, Option.mem_toList] at hv
    rw [List.length_cons]
    rcases hv with hv | hv
    · exact ⟨depth, Nat.le_refl depth, by omega, apply_outerNames_root ht hc (by simp [hcn]) hv depth⟩
    · obtain ⟨level, hlow, hhigh, heq⟩ :=
        ih (ht.child (mem_args_of_child? hc)) hcn (depth + 1) hv
      exact ⟨level, by omega, by omega, (apply_outerNames_child hc hv depth).trans heq⟩

theorem outerNames_append {n : Tree K} (depth : ℕ) (hn : t.get? p = some n) (q : Place) :
    outerNames depth t (p ++ q) = outerNames (depth + p.length) n q ++ outerNames depth t p := by
  induction p generalizing depth t with
  | nil =>
    obtain rfl : t = n := by simpa using hn
    exact (List.append_nil _).symm
  | cons i p ih =>
    obtain ⟨c, hc, hcn⟩ := get?_cons_eq_some.mp hn
    have hlevel : depth + (i :: p).length = depth + 1 + p.length := by
      rw [List.length_cons]
      omega
    rw [List.cons_append, outerNames_cons depth hc, outerNames_cons depth hc, ih (depth + 1) hcn,
      hlevel, List.append_assoc]

theorem apply_outerNames_append {g : Grammar K} {names : NameSupply} {n : Tree K}
    (ht : g.Derived names [] t) (hn : t.get? p = some n) {q : Place} (hq : (n.get? q).isSome)
    {v : Rule K} (hv : v ∈ t.variablesAbove p) (depth : ℕ) :
    (outerNames depth t (p ++ q)).apply v.name = (outerNames depth t p).apply v.name := by
  obtain ⟨m, hm⟩ := Option.isSome_iff_exists.mp hq
  have hfull : t.get? (p ++ q) = some m := get?_trans hn hm
  have hnames := (ht.at_place hfull).wellNamed.nodup
  rw [List.nil_append, variablesAbove_append hn, List.map_append, List.nodup_append'] at hnames
  have hkeys : v.name ∉ (outerNames (depth + p.length) n q).map (·.1) := by
    rw [mem_keys_outerNames]
    exact fun hmem => hnames.2.2 (List.mem_map_of_mem hv) hmem
  rw [outerNames_append depth hn, Renaming.apply_append_right hkeys]

/-- The variable of the node at a place is printed below it with the depth of the place. -/
theorem apply_outerNames_own {n : Tree K} (hn : t.get? p = some n) (hc : n.child? i = some c)
    {v : Rule K} (hv : n.introduced? = some v) (depth : ℕ) :
    (outerNames depth t (p ++ [i])).apply v.name = markText v.stem (depth + p.length) true := by
  have hown : outerNames (depth + p.length) n [i] =
      [(v.name, displayName v (depth + p.length) ++ "'")] := by
    rw [outerNames_cons _ hc, hv]
    rfl
  rw [outerNames_append depth hn, hown]
  simp [Renaming.apply, displayName, markText]

end OuterNames

section Alike

variable {g : Grammar K} {names names' : NameSupply} {S T : Scope K} {M : Matching}
  {s t c d m n : Tree K} {p q : Place} {i : ℕ}

/-- The names above the one place and those above the other that are printed alike. -/
def printedAlike (s : Tree K) (p : Place) (t : Tree K) (q : Place) : Matching := fun x y =>
  (outerNames 0 s p).apply x = (outerNames 0 t q).apply y

/-- Subtrees with the same canonical text are said to be alike. -/
theorem canonicalAt_eq_iff (hm : s.get? p = some m) (hn : t.get? q = some n) :
    s.canonicalAt p = t.canonicalAt q ↔ s.alikeAt p t q = true := by
  simp [alikeAt, canonicalAt, hm, hn, sameText]

theorem shows_outerNames (hplain : g.PlainNames) (ht : g.Derived names [] t)
    (hn : t.get? p = some n) : (outerNames 0 t p).Shows 0 (t.variablesAbove p) := by
  refine ⟨fun pair hpair => ?_, fun x hx => ?_⟩
  · exact mem_keys_outerNames.mp (List.mem_map_of_mem hpair)
  · obtain ⟨v, hv, rfl⟩ := List.mem_map.mp hx
    obtain ⟨level, -, -, heq⟩ := exists_apply_outerNames ht hn 0 hv
    have hstem := (ht.plainVariables_above hplain (by simp) hn v (by simpa using hv)).stem
    exact ⟨v.stem, level, true, hstem, heq, by simp⟩

theorem alikeAt_comm (s t : Tree K) (p q : Place) : s.alikeAt p t q = t.alikeAt q s p := by
  unfold alikeAt sameText
  cases s.canonicalAt p <;> cases t.canonicalAt q <;> simp [Bool.beq_comm]

/-- Subtrees are alike if they correspond to each other over the names that are printed alike. -/
theorem alikeAt_iff (hdist : g.DistinctSignatures) (hplain : g.PlainNames)
    (hs : g.Derivable names s) (ht : g.Derivable names' t) (hm : s.get? p = some m)
    (hn : t.get? q = some n) : s.alikeAt p t q = true ↔ m.VariantOver (printedAlike s p t q) n := by
  have hdm := hs.derived_at hm
  have hdn := ht.derived_at hn
  have hshows := shows_outerNames hplain hs.toDerived hm
  have hshows' := shows_outerNames hplain ht.toDerived hn
  simp only [alikeAt, canonicalAt, hm, hn, Option.map_some, sameText, beq_iff_eq]
  constructor
  · intro h
    have hends : Begins Stop ([] : List Char) := by simp [Begins]
    refine (variantOver_of_text hdist hdm hdn ((hs.plainNames hplain).at_place hm)
      ((ht.plainNames hplain).at_place hn) hshows hshows' hends hends ?_).1
    rw [List.append_nil, List.append_nil]
    exact congrArg String.toList h
  · intro h
    exact canonicalFrom_eq_of_variantOver hdm hdn hshows.keys hshows'.keys h fun x _ y _ h => h

/-- Subtrees are alike if they correspond to each other over a matching of the names that they use,
provided that it matches just those which are printed alike. -/
theorem alikeAt_iff_of_printed (hdist : g.DistinctSignatures) (hplain : g.PlainNames)
    (hs : g.Derivable names s) (ht : g.Derivable names' t) (hm : s.get? p = some m)
    (hn : t.get? q = some n)
    (hprinted : ∀ x ∈ m.freeUses [], ∀ y ∈ n.freeUses [], printedAlike s p t q x y ↔ M x y) :
    s.alikeAt p t q = true ↔ m.VariantOver M n := by
  rw [alikeAt_iff hdist hplain hs ht hm hn]
  constructor
  · exact fun hvar => hvar.imp fun x hx y hy => (hprinted x hx y hy).mp
  · exact fun hvar => hvar.imp fun x hx y hy => (hprinted x hx y hy).mpr

theorem PlainNames.stem_above (h : t.PlainNames) (hn : t.get? p = some n) {v : Rule K}
    (hv : v ∈ t.variablesAbove p) : PlainName v.stem := by
  induction p generalizing t with
  | nil => simp at hv
  | cons i p ih =>
    obtain ⟨c, hc, hcn⟩ := get?_cons_eq_some.mp hn
    obtain ⟨-, -, hstem, -, hargs⟩ := h
    rw [variablesAbove_cons hc, List.mem_append, Option.mem_toList] at hv
    rcases hv with hv | hv
    · refine hstem v ?_
      cases t
      simpa using hv
    · exact ih (hargs c (mem_args_of_child? hc)) hcn hv

theorem getElem?_root_above (T : Scope K) {w : Rule K} (hd : t.child? i = some d)
    (hw : t.introduced? = some w) : (T ++ t.variablesAbove (i :: p))[T.length]? = some w := by
  simp [variablesAbove_cons hd, hw]

theorem exists_getElem?_child_above (T : Scope K) {u w : Rule K} (hd : t.child? i = some d)
    (hu : t.introduced? = some u) (hw : w ∈ d.variablesAbove p) :
    ∃ k > T.length, (T ++ t.variablesAbove (i :: p))[k]? = some w := by
  obtain ⟨k, hk⟩ := List.getElem?_of_mem hw
  refine ⟨T.length + (1 + k), by omega, ?_⟩
  rw [variablesAbove_cons hd, hu, List.getElem?_append_right (by omega)]
  simpa [Nat.add_comm 1 k] using hk

/-- The variable of a root is printed with another depth than one that is introduced below. -/
theorem apply_root_ne_apply_child (hs : g.Derived names S s) (ht : g.Derived names' T t)
    (hplain : s.PlainNames) (hplain' : t.PlainNames) (hc : s.child? i = some c)
    (hd : t.child? i = some d) (hm : c.get? p = some m) (hn : d.get? p = some n) (depth : ℕ)
    {v w : Rule K} (hv : s.introduced? = some v) (hw : w ∈ d.variablesAbove p) :
    (outerNames depth s (i :: p)).apply v.name ≠ (outerNames depth t (i :: p)).apply w.name := by
  have hdt := ht.child (mem_args_of_child? hd)
  obtain ⟨level, hlevel, -, heq⟩ := exists_apply_outerNames hdt hn (depth + 1) hw
  rw [apply_outerNames_root hs hc (by simp [hm]) hv, apply_outerNames_child hd hw, heq]
  intro hmark
  have hstem : PlainName v.stem := hplain.stem_above (p := i :: p) (by simpa [hc] using hm)
    (by simp [variablesAbove_cons hc, hv])
  have hstem' : PlainName w.stem := hplain'.stem_above (p := i :: p) (by simpa [hd] using hn)
    (by simp [variablesAbove_cons hd, hw])
  obtain ⟨-, hdepth, -⟩ := markText_inj hstem hstem' hmark
  omega

/-- Where the nodes on the way correspond, the names that it matches are printed alike, and no
others are. -/
theorem HeadsAlong.apply_eq_iff (h : HeadsAlong M s t p) (hs : g.Derived names S s)
    (ht : g.Derived names' T t) (hal : Scope.Aligned M S T) (ps : s.PlainNames)
    (pt : t.PlainNames) (depth : ℕ) {v w : Rule K} (hv : v ∈ s.variablesAbove p)
    (hw : w ∈ t.variablesAbove p) :
    (outerNames depth s p).apply v.name = (outerNames depth t p).apply w.name ↔
      M.along s t p v.name w.name := by
  induction h generalizing S T depth with
  | here => simp at hv
  | @child M s t c d i p hhead hc hd hrest ih =>
    obtain ⟨⟨m, hm⟩, n, hn⟩ := hrest.exists_get?
    have hway : HeadsAlong M s t (i :: p) := .child hhead hc hd hrest
    have hnames := (hway.aligned hs ht hal).names
    have hlen := hal.rules.length_eq
    rw [variablesAbove_cons hc, List.mem_append, Option.mem_toList] at hv
    rw [variablesAbove_cons hd, List.mem_append, Option.mem_toList] at hw
    have hrel := hhead.introduced?
    rw [← introduced?_eq, ← introduced?_eq] at hrel
    -- the variable of the root is printed with its own depth, which no variable below shares
    rcases hv with hv | hv
    · rcases hw with hw | hw
      · rw [hv, hw] at hrel
        cases hrel with
        | some hvw =>
          rw [apply_outerNames_root hs hc (by simp [hm]) hv,
            apply_outerNames_root ht hd (by simp [hn]) hw, hvw.stem_eq,
            hnames _ _ _ _ (getElem?_root_above S hc hv) (getElem?_root_above T hd hw)]
          exact iff_of_true rfl hlen
      · obtain ⟨u, hu⟩ := Option.isSome_iff_exists.mp
          ((isSome_eq_of_rel hrel).symm.trans (by rw [hv]; rfl))
        obtain ⟨k, hk, hget⟩ := exists_getElem?_child_above T hd hu hw
        rw [hnames _ _ _ _ (getElem?_root_above S hc hv) hget]
        exact iff_of_false (apply_root_ne_apply_child hs ht ps pt hc hd hm hn depth hv hw)
          (by omega)
    · rcases hw with hw | hw
      · obtain ⟨u, hu⟩ := Option.isSome_iff_exists.mp
          ((isSome_eq_of_rel hrel).trans (by rw [hw]; rfl))
        obtain ⟨k, hk, hget⟩ := exists_getElem?_child_above S hc hu hv
        rw [hnames _ _ _ _ hget (getElem?_root_above T hd hw)]
        exact iff_of_false (apply_root_ne_apply_child ht hs pt ps hd hc hn hm depth hw hv).symm
          (by omega)
      · obtain ⟨-, -, -, -, hargs⟩ := ps
        obtain ⟨-, -, -, -, hargs'⟩ := pt
        rw [apply_outerNames_child hc hv, apply_outerNames_child hd hw, along_cons hc hd]
        exact ih (hs.child (mem_args_of_child? hc)) (ht.child (mem_args_of_child? hd))
          (hs.aligned_below ht hal hhead) (hargs c (mem_args_of_child? hc))
          (hargs' d (mem_args_of_child? hd)) (depth + 1) hv hw

/-- Where the nodes on the way to a place correspond, the subtrees there are alike if they
correspond over the names that the way matches. -/
theorem HeadsAlong.alikeAt_iff (hdist : g.DistinctSignatures) (hplain : g.PlainNames)
    (hs : g.Derivable names s) (ht : g.Derivable names' t) (h : HeadsAlong Eq s t p)
    (hm : s.get? p = some m) (hn : t.get? p = some n) :
    s.alikeAt p t p = true ↔ m.VariantOver (Matching.along Eq s t p) n := by
  have hdm := hs.derived_at hm
  have hdn := ht.derived_at hn
  refine alikeAt_iff_of_printed hdist hplain hs ht hm hn fun x hx y hy => ?_
  obtain ⟨v, hv, rfl⟩ := List.mem_map.mp (hdm.mem_scope_of_mem_freeUses hx)
  obtain ⟨w, hw, rfl⟩ := List.mem_map.mp (hdn.mem_scope_of_mem_freeUses hy)
  exact h.apply_eq_iff hs.toDerived ht.toDerived (.nil Eq) (hs.plainNames hplain)
    (ht.plainNames hplain) 0 hv hw

end Alike

end ScopedGrammar.Tree
